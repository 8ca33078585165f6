import PeerCall.Proofs.FanOut
import PeerCall.Proofs.World.Callers

/-! # Misuse

The operations that start calls refuse to be misused, and whatever was done before a refusal stays
done. Here each operation is written so that the world can be looked at after a refusal too, call by
call and check by check, and is shown to be the operation that runs (`World.settled`). Since all
checks come before all that they guard, an operation starts either every call or none
(`World.AllOrNothing`). Main statement: `World.all_or_nothing`. -/

namespace PeerCall

/-! ## Destinations -/

/-- Another peer, for a client that has no host or no protocol to call it. -/
def Client.Unroutable (client : Client) (dest : PeerId) : Prop :=
  dest ≠ .here ∧ dest ≠ client.id ∧ (client.host = none ∨ client.protocol.isEmpty = true)

theorem Client.route_eq_error_iff {client : Client} {dest : PeerId} :
    (∃ e, client.route dest = .error e) ↔ client.Unroutable dest := by
  unfold route Unroutable isSelf id
  by_cases hhere : dest = .here
  · simp [hhere, PeerId.isHere_iff]
  have hnot : dest.isHere = false := Bool.eq_false_iff.mpr (mt PeerId.isHere_iff.mp hhere)
  cases client.host with
  | none => simp [hhere, hnot]
  | some h =>
    by_cases hid : h.id = dest
    · simp [hid, hhere]
    · by_cases hp : client.protocol.isEmpty <;> simp [hid, Ne.symm hid, hhere, hnot, hp]

namespace World

/-! ## Operations that keep what they have done -/

/-- Starts a call. The route is found before anything else is done. -/
def tryStart (w : World) (client : Client) (call : Call) (channel : Nat) :
    Except Misuse Unit × World :=
  match taskOf client call with
  | .error e => (.error e, w)
  | .ok c => (.ok (), (w.modifyChannel channel Channel.addSender).spawn (.call channel c))

/-- Starts a call that is handed back on the caller's channel. -/
def tryGoWith (w : World) (client : Client) (call : Call) (channel : Nat) :
    Except Misuse Unit × World :=
  if w.hasCapacity channel then w.tryStart client call channel else (.error .noCapacity, w)

/-- Starts a call for which the caller waits, on a channel of its own. -/
def tryCall (w : World) (client : Client) (call : Call) : Except Misuse Nat × World :=
  let (channel, w) := w.addChannel 1 0
  match w.tryStart client call channel with
  | (.error e, w) => (.error e, w)
  | (.ok _, w) => (.ok channel, w)

/-- Starts calls one after the other, each on its channel, up to one that is refused. -/
def tryStartAll (w : World) (client : Client) : List (Call × Nat) → Except Misuse Unit × World
  | [] => (.ok (), w)
  | (call, channel) :: rest =>
    match w.tryStart client call channel with
    | (.error e, w) => (.error e, w)
    | (.ok _, w) => w.tryStartAll client rest

/-- Starts calls one after the other, each on a channel of its own, up to one that is refused. -/
def tryCallAll (w : World) (client : Client) : List Call → Except Misuse (List Nat) × World
  | [] => (.ok [], w)
  | call :: rest =>
    match w.tryCall client call with
    | (.error e, w) => (.error e, w)
    | (.ok channel, w) =>
      match w.tryCallAll client rest with
      | (.error e, w) => (.error e, w)
      | (.ok channels, w) => (.ok (channel :: channels), w)

/-- Starts the same call on several peers, each handed back on its own of the caller's channels. -/
def tryMultiGo (w : World) (client : Client) (f : Fan) (contexts : List Context)
    (dests : List PeerId) (replies : List f.replyType.Carrier) (channels : List Nat) :
    Except Misuse Unit × World :=
  if contexts.length ≠ dests.length ∨ dests.length ≠ replies.length ∨
      replies.length ≠ channels.length then (.error .startLengths, w)
  else if channels.any (!w.hasCapacity ·) then (.error .noCapacity, w)
  else
    match checkRoutes client dests with
    | .error e => (.error e, w)
    | .ok _ =>
      let calls := ((contexts.zip dests).zip replies).map fun ((c, d), r) => f.call c d r
      w.tryStartAll client (calls.zip channels)

/-- Starts the same call on several peers for which the caller waits. -/
def tryMultiCall (w : World) (client : Client) (f : Fan) (contexts : List Context)
    (dests : List PeerId) (replies : List f.replyType.Carrier) :
    Except Misuse (List Nat) × World :=
  if contexts.length ≠ dests.length ∨ dests.length ≠ replies.length then
    (.error .callLengths, w)
  else
    match checkRoutes client dests with
    | .error e => (.error e, w)
    | .ok _ => w.tryCallAll client (f.calls contexts dests)

/-- What is left of an operation where the world after a refusal is not looked at. -/
def settled {α : Type} : Except Misuse α × World → Except Misuse (α × World)
  | (.error e, _) => .error e
  | (.ok a, w) => .ok (a, w)

/-! ## They are the operations that run -/

variable {w w' : World} {client : Client} {call : Call} {channel : Nat}
  {calls : List (Call × Nat)}

theorem start_eq_settled (w : World) (client : Client) (call : Call) (channel : Nat) :
    w.start client call channel = (settled (w.tryStart client call channel)).map Prod.snd := by
  unfold start tryStart
  cases taskOf client call <;> rfl

theorem goWith_eq_settled (w : World) (client : Client) (call : Call) (channel : Nat) :
    w.goWith client call channel = (settled (w.tryGoWith client call channel)).map Prod.snd := by
  unfold goWith tryGoWith
  split
  · exact start_eq_settled ..
  · rfl

theorem go_eq_settled (w : World) (client : Client) (call : Call) :
    w.go client call = settled (w.tryCall client call) := by
  have hcap : (w.addChannel 1 0).2.hasCapacity w.channels.length = true := by
    simp [addChannel, hasCapacity, Channel.ofCapacity]
  have hfst : (w.addChannel 1 0).1 = w.channels.length := rfl
  simp only [go, tryCall, goWith, hfst, hcap, if_true, start, tryStart]
  cases taskOf client call <;> rfl

theorem startAll_eq_settled (w : World) (client : Client) (calls : List (Call × Nat)) :
    w.startAll client calls = (settled (w.tryStartAll client calls)).map Prod.snd := by
  induction calls generalizing w with
  | nil => rfl
  | cons e calls ih =>
    rw [startAll, tryStartAll, start, tryStart]
    cases taskOf client e.1 with
    | error => rfl
    | ok c => exact ih _

theorem multiGo_eq_settled (w : World) (client : Client) (f : Fan) (contexts : List Context)
    (dests : List PeerId) (replies : List f.replyType.Carrier) (channels : List Nat) :
    w.multiGo client f contexts dests replies channels =
      (settled (w.tryMultiGo client f contexts dests replies channels)).map Prod.snd := by
  unfold multiGo tryMultiGo
  split
  · rfl
  · split
    · rfl
    · cases checkRoutes client dests with
      | error => rfl
      | ok => exact startAll_eq_settled ..

/-! ## What passes the checks is started -/

theorem checkRoutes_eq_error_iff {dests : List PeerId} :
    (∃ e, checkRoutes client dests = .error e) ↔ ∃ d ∈ dests, client.Unroutable d := by
  induction dests with
  | nil => simp [checkRoutes]
  | cons d dests ih =>
    rw [checkRoutes]
    simp only [List.mem_cons, or_and_right, exists_or, exists_eq_left, ← ih]
    rw [← Client.route_eq_error_iff]
    cases client.route d with
    | error e => simp
    | ok route => simp

theorem exists_taskOf (h : ¬client.Unroutable call.dest) : ∃ c, taskOf client call = .ok c := by
  rw [← Client.route_eq_error_iff] at h
  unfold taskOf
  cases hroute : client.route call.dest with
  | error e => exact absurd ⟨e, hroute⟩ h
  | ok route => cases route <;> exact ⟨_, rfl⟩

theorem exists_misuse (h : client.Unroutable call.dest) : ∃ e, taskOf client call = .error e := by
  obtain ⟨e, he⟩ := Client.route_eq_error_iff.mpr h
  exact ⟨e, by rw [taskOf, he]⟩

theorem call_of_taskOf {c : CallTask} (h : taskOf client call = .ok c) : c.call = call := by
  unfold taskOf at h
  split at h <;> cases h <;> rfl

/-- A call on a fresh channel is a call on the last of some more channels. -/
private theorem modify_fresh (channels : List (Channel Call)) (n : Nat) :
    (channels ++ List.replicate (n + 1) (Channel.ofCapacity 1 0)).modify channels.length
        Channel.addSender =
      (channels ++ [Channel.ofCapacity 1 0]).modify channels.length Channel.addSender ++
        List.replicate n (Channel.ofCapacity 1 0) := by
  rw [List.modify_eq_take_cons_drop (by simp), List.modify_eq_take_cons_drop (by simp)]
  simp [List.replicate_succ]

/-- Calls that are started one by one, each with its channel, are started as if all channels had
been there before. -/
theorem tryCallAll_eq {cs : List Call} (h : ∀ call ∈ cs, ¬client.Unroutable call.dest) (w : World) :
    ∃ w', w.tryCallAll client cs =
        (.ok ((List.range cs.length).map (w.channels.length + ·)), w') ∧
      startAll { w with
          channels := w.channels ++ List.replicate cs.length (Channel.ofCapacity 1 0) } client
        (cs.zip ((List.range cs.length).map (w.channels.length + ·))) = .ok w' := by
  induction cs generalizing w with
  | nil => exact ⟨w, rfl, by simp [startAll]⟩
  | cons call cs ih =>
    obtain ⟨c, hc⟩ := exists_taskOf (h call (List.mem_cons_self ..))
    let w₁ := ((w.addChannel 1 0).2.modifyChannel w.channels.length Channel.addSender).spawn
      (.call w.channels.length c)
    have hcall : w.tryCall client call = (.ok w.channels.length, w₁) := by
      simp only [tryCall, tryStart, hc]
      rfl
    have hlength : w₁.channels.length = w.channels.length + 1 := by
      simp [w₁, addChannel, modifyChannel, spawn]
    have hrange : (List.range (cs.length + 1)).map (w.channels.length + ·) =
        w.channels.length :: (List.range cs.length).map (w₁.channels.length + ·) := by
      rw [List.range_succ_eq_map, List.map_cons, List.map_map, hlength]
      simp [Function.comp_def, Nat.add_assoc, Nat.add_comm 1]
    obtain ⟨w', htry, hstart⟩ := ih (fun c hc => h c (List.mem_cons_of_mem _ hc)) w₁
    refine ⟨w', ?_, ?_⟩
    · rw [tryCallAll, hcall]
      simp only [htry]
      rw [List.length_cons, hrange]
    · rw [List.length_cons, hrange, List.zip_cons_cons, startAll, start, hc]
      simp only [modifyChannel, spawn, modify_fresh]
      exact hstart

theorem not_unroutable_of_checkRoutes {dests : List PeerId}
    (h : checkRoutes client dests = .ok ()) : ∀ d ∈ dests, ¬client.Unroutable d := by
  intro d hd hun
  obtain ⟨e, he⟩ := checkRoutes_eq_error_iff.mpr ⟨d, hd, hun⟩
  cases h.symm.trans he

/-- Calls to destinations that were checked are started, all of them. -/
theorem tryCallAll_of_checkRoutes {f : Fan} {contexts : List Context} {dests : List PeerId}
    (w : World) (hlength : contexts.length = dests.length)
    (hroutes : checkRoutes client dests = .ok ()) :
    ∃ w', w.tryCallAll client (f.calls contexts dests) =
        (.ok ((List.range dests.length).map (w.channels.length + ·)), w') ∧
      startAll { w with
          channels := w.channels ++ List.replicate dests.length (Channel.ofCapacity 1 0) } client
        ((f.calls contexts dests).zip ((List.range dests.length).map (w.channels.length + ·))) =
          .ok w' := by
  have hroute : ∀ call ∈ f.calls contexts dests, ¬client.Unroutable call.dest := by
    intro call hcall
    obtain ⟨⟨c, d⟩, hcd, rfl⟩ := List.mem_map.mp hcall
    exact not_unroutable_of_checkRoutes hroutes d (List.of_mem_zip hcd).2
  have h := tryCallAll_eq hroute w
  rwa [Fan.length_calls hlength] at h

theorem multiCall_eq_settled (w : World) (client : Client) (f : Fan) (contexts : List Context)
    (dests : List PeerId) (replies : List f.replyType.Carrier) :
    w.multiCall client f contexts dests replies =
      settled (w.tryMultiCall client f contexts dests replies) := by
  unfold multiCall tryMultiCall
  split
  · rfl
  · rename_i hlengths
    cases hroutes : checkRoutes client dests with
    | error => rfl
    | ok =>
      have hlength : contexts.length = dests.length :=
        Classical.not_not.mp fun hne => hlengths (.inl hne)
      obtain ⟨w', htry, hstart⟩ := tryCallAll_of_checkRoutes (f := f) w hlength hroutes
      rw [Fan.calls] at hstart
      simp only [hstart, htry]
      rfl

/-! ## All or nothing -/

/-- Calls were started, one for each of so many places: each has a task of its own that is about to
drive it and to hand it back on its channel. Nothing else has been done. -/
structure Started (w : World) (client : Client) (count : Nat)
    (callAt : Nat → Option (Call × Nat)) (w' : World) : Prop where
  rest : w' = { w with channels := w'.channels, tasks := w'.tasks }
  /-- Some have a sender more, but nothing was sent. -/
  channels : ∀ ch : Nat, ∃ n, w'.channels[ch]? =
    (w.channels[ch]?).map fun c => { c with senders := c.senders + n }
  tasks : ∀ k < w.tasks.length, w'.tasks[k]? = w.tasks[k]?
  length : w'.tasks.length = w.tasks.length + count
  begun : ∀ i < count, ∃ call channel c, callAt i = some (call, channel) ∧
    taskOf client call = .ok c ∧ c.call = call ∧
    w'.tasks[w.tasks.length + i]? = some (.call channel c)

/-- What an operation is to do: the world that it may leave when it is misused, the world in which
it starts calls, what it returns, and the calls. -/
structure Plan (α : Type) where
  left : World
  base : World
  value : α
  count : Nat
  callAt : Nat → Option (Call × Nat)

/-- An operation is refused just when it is misused, and then nothing was done. Else all was done
that was to be. -/
structure AllOrNothing {α : Type} (client : Client) (misused : Prop) (p : Plan α)
    (r : Except Misuse α × World) : Prop where
  refused : (∃ e, r.1 = .error e) ↔ misused
  nothing : ∀ e, r.1 = .error e → r.2 = p.left
  all : ∀ a, r.1 = .ok a → a = p.value ∧ p.base.Started client p.count p.callAt r.2

theorem withSenders_getElem? (channels : List (Channel Call)) (calls : List (Call × Nat))
    (ch : Nat) : ∃ n, (withSenders channels calls)[ch]? =
      (channels[ch]?).map fun c => { c with senders := c.senders + n } := by
  induction calls generalizing channels with
  | nil => exact ⟨0, by simp [withSenders]⟩
  | cons e calls ih =>
    obtain ⟨n, hn⟩ := ih (channels.modify e.2 Channel.addSender)
    rw [withSenders, List.foldl_cons, ← withSenders, hn]
    by_cases he : e.2 = ch
    · subst he
      refine ⟨1 + n, ?_⟩
      rw [List.getElem?_modify_eq]
      cases channels[e.2]? with
      | none => rfl
      | some c => simp [Channel.addSender, Nat.add_assoc]
    · exact ⟨n, by rw [List.getElem?_modify_ne _ _ he]⟩

theorem started_of_startAll {callAt : Nat → Option (Call × Nat)} {count : Nat}
    (hcount : calls.length = count) (hcalls : ∀ i < count, callAt i = calls[i]?)
    (h : w.startAll client calls = .ok w') : w.Started client count callAt w' := by
  subst hcount
  obtain ⟨cs, hcs, rfl⟩ := startAll_eq_ok h
  have hlength : cs.length = calls.length := by
    have hlength := congrArg List.length hcs
    simpa using hlength.symm
  constructor
  · rfl
  · exact withSenders_getElem? w.channels calls
  · intro k hk
    exact List.getElem?_append_left hk
  · simp [hlength]
  · intro i hi
    have hi' : i < cs.length := hlength ▸ hi
    have hc : taskOf client calls[i].1 = .ok cs[i] := by
      have hc := congrArg (·[i]?) hcs
      simpa [hi, hi'] using hc
    refine ⟨calls[i].1, calls[i].2, cs[i], ?_, hc, call_of_taskOf hc, ?_⟩
    · rw [hcalls i hi, List.getElem?_eq_getElem hi]
    · rw [List.getElem?_append_right (Nat.le_add_right ..), Nat.add_sub_cancel_left]
      exact getElem?_map_zip (List.getElem?_eq_getElem hi) (List.getElem?_eq_getElem hi')

namespace AllOrNothing

variable {α : Type} {misused : Prop} {p : Plan α}

theorem refusal (h : misused) (e : Misuse) : AllOrNothing client misused p (.error e, p.left) :=
  ⟨⟨fun _ => h, fun _ => ⟨e, rfl⟩⟩, fun _ _ => rfl, nofun⟩

theorem success (h : ¬misused) (hs : p.base.Started client p.count p.callAt w') :
    AllOrNothing client misused p (.ok p.value, w') :=
  ⟨⟨nofun, fun hm => absurd hm h⟩, nofun, fun _ ha => ⟨(Except.ok.inj ha).symm, hs⟩⟩

theorem start (w : World) (client : Client) (call : Call) (channel : Nat) :
    AllOrNothing client (client.Unroutable call.dest) ⟨w, w, (), 1, ([(call, channel)][·]?)⟩
      (w.tryStart client call channel) := by
  by_cases hun : client.Unroutable call.dest
  · obtain ⟨e, he⟩ := exists_misuse hun
    rw [tryStart, he]
    exact refusal hun e
  · obtain ⟨c, hc⟩ := exists_taskOf hun
    have hstart : w.startAll client [(call, channel)] =
        .ok ((w.modifyChannel channel Channel.addSender).spawn (.call channel c)) := by
      rw [startAll, World.start, hc]
      rfl
    rw [tryStart, hc]
    exact success hun (started_of_startAll rfl (fun _ _ => rfl) hstart)

theorem goWith (w : World) (client : Client) (call : Call) (channel : Nat) :
    AllOrNothing client (w.hasCapacity channel = false ∨ client.Unroutable call.dest)
      ⟨w, w, (), 1, ([(call, channel)][·]?)⟩ (w.tryGoWith client call channel) := by
  cases hcap : w.hasCapacity channel with
  | false =>
    rw [tryGoWith, hcap]
    exact refusal (.inl rfl) .noCapacity
  | true =>
    rw [tryGoWith, if_pos hcap, or_iff_right (by decide)]
    exact start w client call channel

theorem waited (w : World) (client : Client) (call : Call) :
    AllOrNothing client (client.Unroutable call.dest)
      ⟨(w.addChannel 1 0).2, (w.addChannel 1 0).2, w.channels.length, 1,
        ([(call, w.channels.length)][·]?)⟩ (w.tryCall client call) := by
  have h := start (w.addChannel 1 0).2 client call w.channels.length
  have hfst : (w.addChannel 1 0).1 = w.channels.length := rfl
  simp only [tryCall, hfst]
  cases htry : (w.addChannel 1 0).2.tryStart client call w.channels.length with
  | mk r w' =>
    rw [htry] at h
    cases r with
    | error e =>
      obtain rfl := h.nothing e rfl
      exact refusal (h.refused.mp ⟨e, rfl⟩) e
    | ok =>
      refine success (fun hun => ?_) (h.all () rfl).2
      obtain ⟨e, he⟩ := h.refused.mpr hun
      cases he

end AllOrNothing

/-- The call of a fan at a place of the lists, and the channel that it is handed back on. -/
def Fan.callAt (f : Fan) (contexts : List Context) (dests : List PeerId)
    (replies : List f.replyType.Carrier) (channels : List Nat) (i : Nat) : Option (Call × Nat) :=
  match contexts[i]?, dests[i]?, replies[i]?, channels[i]? with
  | some c, some d, some r, some channel => some (f.call c d r, channel)
  | _, _, _, _ => none

theorem Fan.callAt_eq {f : Fan} {contexts : List Context} {dests : List PeerId}
    {replies : List f.replyType.Carrier} {channels : List Nat} {i : Nat} {context : Context}
    {dest : PeerId} {reply : f.replyType.Carrier} (hc : contexts[i]? = some context)
    (hd : dests[i]? = some dest) (hr : replies[i]? = some reply)
    (hch : channels[i]? = some channel) :
    f.callAt contexts dests replies channels i = some (f.call context dest reply, channel) := by
  rw [callAt, hc, hd, hr, hch]

theorem tryStartAll_of_startAll (h : w.startAll client calls = .ok w') :
    w.tryStartAll client calls = (.ok (), w') := by
  rw [startAll_eq_settled] at h
  cases htry : w.tryStartAll client calls with
  | mk r w₁ =>
    rw [htry] at h
    cases r <;> cases h
    rfl

section

variable {f : Fan} {contexts : List Context} {dests : List PeerId}
  {replies : List f.replyType.Carrier} {channels : List Nat}

/-- Calls on the caller's channels to destinations that were checked are started, all of them. -/
theorem started_go (w : World) (hcontexts : contexts.length = dests.length)
    (hreplies : dests.length = replies.length) (hchannels : replies.length = channels.length)
    (hroutes : checkRoutes client dests = .ok ()) :
    ∃ w', w.tryStartAll client ((((contexts.zip dests).zip replies).map
          fun ((c, d), r) => f.call c d r).zip channels) = (.ok (), w') ∧
      w.Started client dests.length (f.callAt contexts dests replies channels) w' := by
  have hroute : ∀ e ∈ (((contexts.zip dests).zip replies).map
      fun ((c, d), r) => f.call c d r).zip channels,
      ∃ route, client.route e.1.dest = .ok route := by
    intro e he
    obtain ⟨⟨⟨c, d⟩, r⟩, hcdr, hcall⟩ := List.mem_map.mp (List.of_mem_zip he).1
    rw [← hcall]
    exact route_of_checkRoutes hroutes (List.of_mem_zip (List.of_mem_zip hcdr).1).2
  have hlength : ((((contexts.zip dests).zip replies).map
      fun ((c, d), r) => f.call c d r).zip channels).length = dests.length := by
    simp [hcontexts, ← hchannels, ← hreplies]
  obtain ⟨w', hstart⟩ := startAll_of_routes w hroute
  refine ⟨w', tryStartAll_of_startAll hstart, started_of_startAll hlength ?_ hstart⟩
  intro i hi
  have hc := List.getElem?_eq_getElem (l := contexts) (hcontexts ▸ hi)
  have hd := List.getElem?_eq_getElem hi
  have hr := List.getElem?_eq_getElem (l := replies) (hreplies ▸ hi)
  have hch := List.getElem?_eq_getElem (l := channels) (hchannels ▸ hreplies ▸ hi)
  have hpair : (contexts.zip dests)[i]? = some (contexts[i], dests[i]) :=
    List.getElem?_zip_eq_some.mpr ⟨hc, hd⟩
  have hcall : (((contexts.zip dests).zip replies).map fun ((c, d), r) => f.call c d r)[i]? =
      some (f.call contexts[i] dests[i] replies[i]) := getElem?_map_zip hpair hr
  rw [Fan.callAt_eq hc hd hr hch]
  exact (List.getElem?_zip_eq_some.mpr ⟨hcall, hch⟩).symm

/-- Calls that the caller waits for are started in the same way, with replies that are blank. -/
theorem started_call (w : World) (hcontexts : contexts.length = dests.length)
    (hroutes : checkRoutes client dests = .ok ()) :
    ∃ w', w.tryCallAll client (f.calls contexts dests) =
        (.ok ((List.range dests.length).map (w.channels.length + ·)), w') ∧
      Started { w with channels := w.channels ++
          List.replicate dests.length (Channel.ofCapacity 1 0) } client dests.length
        (f.callAt contexts dests (List.replicate dests.length f.replyType.blank)
          ((List.range dests.length).map (w.channels.length + ·))) w' := by
  obtain ⟨w', htry, hstart⟩ := tryCallAll_of_checkRoutes (f := f) w hcontexts hroutes
  have hlength : ((f.calls contexts dests).zip
      ((List.range dests.length).map (w.channels.length + ·))).length = dests.length := by
    simp [Fan.length_calls hcontexts]
  refine ⟨w', htry, started_of_startAll hlength ?_ hstart⟩
  intro i hi
  have hc := List.getElem?_eq_getElem (l := contexts) (hcontexts ▸ hi)
  have hd := List.getElem?_eq_getElem hi
  have hr : (List.replicate dests.length f.replyType.blank)[i]? = some f.replyType.blank := by
    rw [List.getElem?_replicate, if_pos hi]
  have hch := getElem?_channels hi w.channels.length
  rw [Fan.callAt_eq hc hd hr hch]
  exact (List.getElem?_zip_eq_some.mpr ⟨Fan.getElem?_calls hc hd, hch⟩).symm

end

namespace AllOrNothing

variable (w : World) (client : Client) (f : Fan) (contexts : List Context) (dests : List PeerId)
  (replies : List f.replyType.Carrier)

theorem multiGo (channels : List Nat) :
    AllOrNothing client
      (¬(contexts.length = dests.length ∧ dests.length = replies.length ∧
          replies.length = channels.length) ∨
        (∃ channel ∈ channels, w.hasCapacity channel = false) ∨
        ∃ d ∈ dests, client.Unroutable d)
      ⟨w, w, (), dests.length, f.callAt contexts dests replies channels⟩
      (w.tryMultiGo client f contexts dests replies channels) := by
  by_cases hlengths : contexts.length = dests.length ∧ dests.length = replies.length ∧
      replies.length = channels.length
  · have ⟨hcontexts, hreplies, hchannels⟩ := hlengths
    rw [tryMultiGo, if_neg (by omega)]
    by_cases hfull : ∃ channel ∈ channels, w.hasCapacity channel = false
    · rw [if_pos (by simpa using hfull)]
      exact refusal (.inr (.inl hfull)) .noCapacity
    · rw [if_neg (by simpa using hfull)]
      cases hroutes : checkRoutes client dests with
      | error e =>
        exact refusal (.inr (.inr (checkRoutes_eq_error_iff.mp ⟨e, hroutes⟩))) e
      | ok =>
        obtain ⟨w', htry, hstarted⟩ := started_go w hcontexts hreplies hchannels hroutes
        simp only [htry]
        refine success ?_ hstarted
        rintro (h | h | ⟨d, hd, h⟩)
        · exact h hlengths
        · exact hfull h
        · exact not_unroutable_of_checkRoutes hroutes d hd h
  · rw [tryMultiGo, if_pos (by omega)]
    exact refusal (.inl hlengths) .startLengths

theorem multiCall :
    AllOrNothing client
      (¬(contexts.length = dests.length ∧ dests.length = replies.length) ∨
        ∃ d ∈ dests, client.Unroutable d)
      ⟨w, { w with channels := w.channels ++
          List.replicate dests.length (Channel.ofCapacity 1 0) },
        (List.range dests.length).map (w.channels.length + ·), dests.length,
        f.callAt contexts dests (List.replicate dests.length f.replyType.blank)
          ((List.range dests.length).map (w.channels.length + ·))⟩
      (w.tryMultiCall client f contexts dests replies) := by
  by_cases hlengths : contexts.length = dests.length ∧ dests.length = replies.length
  · rw [tryMultiCall, if_neg (by omega)]
    cases hroutes : checkRoutes client dests with
    | error e => exact refusal (.inr (checkRoutes_eq_error_iff.mp ⟨e, hroutes⟩)) e
    | ok =>
      obtain ⟨w', htry, hstarted⟩ := started_call (f := f) w hlengths.1 hroutes
      simp only [htry]
      refine success ?_ hstarted
      rintro (h | ⟨d, hd, h⟩)
      · exact h hlengths
      · exact not_unroutable_of_checkRoutes hroutes d hd h
  · rw [tryMultiCall, if_pos (by omega)]
    exact refusal (.inl hlengths) .callLengths

end AllOrNothing

/-- Each operation that starts calls is refused just when it is misused: the lists differ in length,
a channel has no capacity, or a destination has no route, wherever in the lists that is. Then
nothing at all was done, but that a single call for which the caller waits has made its channel.
Else there is one new task for every place, which drives the call of that place. -/
theorem all_or_nothing (w : World) (client : Client) :
    (∀ call channel,
      w.goWith client call channel =
        (settled (w.tryGoWith client call channel)).map Prod.snd ∧
      AllOrNothing client (w.hasCapacity channel = false ∨ client.Unroutable call.dest)
        ⟨w, w, (), 1, ([(call, channel)][·]?)⟩ (w.tryGoWith client call channel)) ∧
    (∀ call,
      w.go client call = settled (w.tryCall client call) ∧
      AllOrNothing client (client.Unroutable call.dest)
        ⟨(w.addChannel 1 0).2, (w.addChannel 1 0).2, w.channels.length, 1,
          ([(call, w.channels.length)][·]?)⟩ (w.tryCall client call)) ∧
    ∀ (f : Fan) (contexts : List Context) (dests : List PeerId)
      (replies : List f.replyType.Carrier),
      (∀ channels : List Nat,
        w.multiGo client f contexts dests replies channels =
          (settled (w.tryMultiGo client f contexts dests replies channels)).map Prod.snd ∧
        AllOrNothing client
          (¬(contexts.length = dests.length ∧ dests.length = replies.length ∧
              replies.length = channels.length) ∨
            (∃ channel ∈ channels, w.hasCapacity channel = false) ∨
            ∃ d ∈ dests, client.Unroutable d)
          ⟨w, w, (), dests.length, f.callAt contexts dests replies channels⟩
          (w.tryMultiGo client f contexts dests replies channels)) ∧
      w.multiCall client f contexts dests replies =
        settled (w.tryMultiCall client f contexts dests replies) ∧
      AllOrNothing client
        (¬(contexts.length = dests.length ∧ dests.length = replies.length) ∨
          ∃ d ∈ dests, client.Unroutable d)
        ⟨w, { w with channels := w.channels ++
            List.replicate dests.length (Channel.ofCapacity 1 0) },
          (List.range dests.length).map (w.channels.length + ·), dests.length,
          f.callAt contexts dests (List.replicate dests.length f.replyType.blank)
            ((List.range dests.length).map (w.channels.length + ·))⟩
        (w.tryMultiCall client f contexts dests replies) := by
  refine ⟨?_, ?_, ?_⟩
  · intro call channel
    exact ⟨goWith_eq_settled w client call channel, .goWith w client call channel⟩
  · intro call
    exact ⟨go_eq_settled w client call, .waited w client call⟩
  · intro f contexts dests replies
    refine ⟨?_, multiCall_eq_settled w client f contexts dests replies,
      .multiCall w client f contexts dests replies⟩
    intro channels
    exact ⟨multiGo_eq_settled w client f contexts dests replies channels,
      .multiGo w client f contexts dests replies channels⟩

/-- Only the last of three destinations needs a host, and there is none. -/
example : (tryMultiGo { channels := [.ofCapacity 3 1] } { host := none } survey
    (List.replicate 3 ⟨.root 0, none⟩) [.here, .here, ⟨"bob"⟩] (List.replicate 3 false)
    (List.replicate 3 0)).2.tasks.length = 0 := rfl

end World

end PeerCall
