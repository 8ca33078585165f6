import PeerCall.Proofs.Replies
import PeerCall.Proofs.World.Beginning
import PeerCall.Proofs.World.Streams

/-! # Calls on several peers

Each of several calls that were started together comes to something that it can come to when it is
started alone, while the same happens from outside: the lone world follows the crowded one
(`World.Shadow.of_run?`), and the channel of the call is the same in both (`World.Begun.alone`). The
streams of the calls are their own (`World.OwnStream`). Main statement: `World.fans_out_of_run?`. -/

namespace PeerCall.World

open Session.Calls.State (pollChannel pollChannels)

variable {w w' w₀ w₁ v V W : World} {client : Client} {f : Focus} {ts ls : List Nat}
  {moves : List Move} {k channel : Nat} {call : Call}

/-! ## The lone world follows a run -/

/-- What happens from outside in a run: time passes, and tokens are fired. -/
def outside (moves : List Move) : List Move := moves.filter (!·.isStep)

theorem Pursuit.ready {replies : List Bytes} (h : V.Pursuit client call f.task f.channel replies) :
    Shadow.Ready f V := by
  intro c hc
  cases h with
  | pending _ _ hch | done _ _ hch => exact hch
  | handed ht | lost ht => cases hc.symm.trans ht

namespace Shadow

/-- The lone world follows a run of the crowded one, while the same happens from outside. -/
theorem of_run? {replies : List Bytes} (h : Shadow f ts ls V W) (hw : W.InOrder)
    (hp : V.Pursuit client call f.task f.channel replies) (ho : V.OwnChannel f.task f.channel)
    (hfire : ∀ t, Move.fire t ∈ moves → t.isMade f.tokens = true) (hrun : run? moves W = some w) :
    ∃ ts' ls' v moves', run? moves' V = some v ∧ outside moves' = outside moves ∧
      Shadow f ts' ls' v w := by
  induction moves generalizing ts ls V W replies with
  | nil =>
    cases hrun
    exact ⟨ts, ls, V, [], rfl, rfl, h⟩
  | cons mv moves ih =>
    obtain ⟨W₁, hmove, hrest⟩ := run?_cons hrun
    have hfire' t (ht : Move.fire t ∈ moves) := hfire t (List.mem_cons_of_mem _ ht)
    -- One move of the lone world, and the run that follows the rest.
    have hgo (mv') {V₁ ts₁ ls₁ replies₁} (hV : V.move? mv' = some V₁) (h₁ : Shadow f ts₁ ls₁ V₁ W₁)
        (hw₁ : W₁.InOrder) (hp₁ : V₁.Pursuit client call f.task f.channel replies₁)
        (ho₁ : V₁.OwnChannel f.task f.channel) (hout : outside [mv'] = outside [mv]) :
        ∃ ts' ls' v moves', run? moves' V = some v ∧ outside moves' = outside (mv :: moves) ∧
          Shadow f ts' ls' v w := by
      obtain ⟨ts', ls', v, moves', hrun', hout', h'⟩ := ih h₁ hw₁ hp₁ ho₁ hfire' hrest
      refine ⟨ts', ls', v, mv' :: moves', ?_, ?_, h'⟩
      · rw [run?, hV]
        exact hrun'
      · have happend (mv : Move) (moves : List Move) :
            outside (mv :: moves) = outside [mv] ++ outside moves := List.filter_append [mv] moves
        rw [happend, happend mv, hout, hout']
    cases mv with
    | step i =>
      have hw₁ := (steps_of_step? hmove).inOrder hw
      obtain ⟨ts₁, ls₁, V₁, rfl | ⟨j, hV⟩, h₁⟩ := h.follows hw hp.ready hmove
      · exact ih h₁ hw₁ hp ho hfire' hrest
      · exact hgo (.step j) hV h₁ hw₁ (hp.step ho hV) (ho.step (steps_of_step? hV)) rfl
    | clock now =>
      simp only [move?] at hmove
      split at hmove
      · rename_i hle
        cases hmove
        have hV : V.move? (.clock now) = some (V.atTime now) := if_pos (h.moment ▸ hle)
        exact hgo _ hV (h.later now) (hw.later _) (hp.later _) ho rfl
      · cases hmove
    | fire t =>
      cases hmove
      have hmade := hfire t (List.mem_cons_self ..)
      exact hgo (.fire t) rfl (h.fire hmade) (hw.later _) (hp.later _) ho rfl

end Shadow

/-! ## Waiting for several calls -/

/-- What comes of a channel is told by the channel. -/
theorem pollChannel_congr {a b : Nat} (h : v.channels[a]? = w.channels[b]?) :
    (pollChannel a v).map Prod.fst = (pollChannel b w).map Prod.fst := by
  unfold pollChannel
  rw [h]
  cases w.channels[b]? with
  | none => rfl
  | some ch =>
    simp only
    cases ch.receive with
    | mk receipt ch' => cases receipt <;> rfl

/-- To take what is there on a channel leaves the others alone. -/
theorem getElem?_of_pollChannel {a b : Nat} {receipt : Receipt Call}
    (h : pollChannel a w = some (receipt, w')) (hne : a ≠ b) :
    w'.channels[b]? = w.channels[b]? := by
  unfold pollChannel at h
  split at h
  · cases h
    rfl
  · split at h <;> cases h
    · exact List.getElem?_set_ne hne
    · rfl

theorem getElem?_of_pollChannels {channels : List Nat} {receipts : List (Receipt Call)}
    (hn : channels.Nodup) (h : pollChannels channels w = some (receipts, w')) :
    receipts.length = channels.length ∧ ∀ i channel : Nat, channels[i]? = some channel →
      (pollChannel channel w).map Prod.fst = receipts[i]? := by
  induction channels generalizing w receipts with
  | nil =>
    cases h
    exact ⟨rfl, nofun⟩
  | cons a channels ih =>
    obtain ⟨hnot, hn⟩ := List.nodup_cons.mp hn
    rw [pollChannels] at h
    split at h
    · cases h
    · rename_i receipt w₁ hpoll
      split at h <;> cases h
      rename_i receipts hrest
      obtain ⟨hlength, hpolls⟩ := ih hn hrest
      refine ⟨congrArg Nat.succ hlength, fun i channel hi => ?_⟩
      cases i with
      | zero =>
        cases hi
        rw [hpoll]
        rfl
      | succ i =>
        have hne : a ≠ channel := by
          rintro rfl
          exact hnot (List.mem_of_getElem? hi)
        rw [List.getElem?_cons_succ, ← hpolls i channel hi]
        exact pollChannel_congr (getElem?_of_pollChannel hpoll hne).symm

theorem exists_of_pollChannels_eq_none {channels : List Nat} (hn : channels.Nodup)
    (h : pollChannels channels w = none) :
    ∃ i channel : Nat, channels[i]? = some channel ∧ pollChannel channel w = none := by
  induction channels generalizing w with
  | nil => cases h
  | cons a channels ih =>
    obtain ⟨hnot, hn⟩ := List.nodup_cons.mp hn
    rw [pollChannels] at h
    split at h
    · exact ⟨0, a, rfl, ‹_›⟩
    · rename_i receipt w₁ hpoll
      split at h
      · rename_i hrest
        obtain ⟨i, channel, hi, hnone⟩ := ih hn hrest
        have hne : a ≠ channel := by
          rintro rfl
          exact hnot (List.mem_of_getElem? hi)
        have hsame := pollChannel_congr (getElem?_of_pollChannel hpoll hne)
        rw [hnone, Option.map_none] at hsame
        exact ⟨i + 1, channel, hi, Option.map_eq_none_iff.mp hsame.symm⟩
      · cases h

/-! ## A call alone -/

/-- A world in which a call was started alone, after a run while this happens from outside. -/
def Alone (w₀ : World) (client : Client) (call : Call) (out : List Move) (v : World) : Prop :=
  ∃ V moves, w₀.go client call = .ok (w₀.channels.length, V) ∧ run? moves V = some v ∧
    outside moves = out

/-- What a caller can get who waits for a call that was started alone: an error, and the reply that
the caller has then. -/
def ComesTo (w₀ : World) (client : Client) (call : Call) (untouched : call.replyType.Carrier)
    (out : List Move) (result : Option CallError × Datum) : Prop :=
  ∃ v receipt v', w₀.Alone client call out v ∧
    pollChannel w₀.channels.length v = some (receipt, v') ∧
    concluded call.replyType untouched receipt = result

/-- A caller can wait for ever for a call that was started alone. -/
def Hangs (w₀ : World) (client : Client) (call : Call) (out : List Move) : Prop :=
  ∃ v, w₀.Alone client call out v ∧ v.AtRest ∧ pollChannel w₀.channels.length v = none

/-- A call that was started with others goes on as one that was started alone. -/
theorem Begun.alone {calls : List Call} {i : Nat} (h : w₀.Begun client calls w₁) (hw : w₀.Tidy)
    (hi : calls[i]? = some call)
    (hfire : ∀ t, Move.fire t ∈ moves → t.isMade w₀.tokens = true)
    (hrun : run? moves w₁ = some w) :
    ∃ v, w₀.Alone client call (outside moves) v ∧ (w.AtRest → v.AtRest) ∧
      v.channels[w₀.channels.length]? = w.channels[w₀.channels.length + i]? := by
  obtain ⟨c, hc, -⟩ := h.begun i call hi
  have hgo := go_eq (w := w₀) hc
  obtain ⟨hpursuit, hown⟩ := pursuit_of_go
    (fun k c' hk => Nat.lt_irrefl _ (hw.routed k _ c' hk)) hgo
  obtain ⟨ts, ls, v, moves', hrun', hout, hshadow⟩ :=
    (h.shadow hw hi hc).of_run? (h.inOrder hw.inOrder) hpursuit hown hfire hrun
  have hlast := hpursuit.of_run? hown hrun'
  exact ⟨v, ⟨_, moves', hgo, hrun', hout⟩, hshadow.atRest (Pursuit.ready hlast),
    hshadow.channels.own⟩

/-! ## Several calls -/

/-- What a call on several peers returns: of each what can come of it alone, and exactly that where
it is the same whatever the tasks do. -/
structure FansOut (w₀ : World) (client : Client) (f : Fan) (contexts : List Context)
    (dests : List PeerId) (replies : List f.replyType.Carrier) (out : List Move)
    (results : List (Option CallError × Datum)) : Prop where
  length : results.length = dests.length
  pointwise : ∀ (i : Nat) context dest reply result, contexts[i]? = some context →
    dests[i]? = some dest → replies[i]? = some reply → results[i]? = some result →
    w₀.ComesTo client (f.call context dest f.replyType.blank) reply out result
  determined : ∀ (i : Nat) context dest reply result, contexts[i]? = some context →
    dests[i]? = some dest → replies[i]? = some reply →
    (∀ other, w₀.ComesTo client (f.call context dest f.replyType.blank) reply out other →
      other = result) →
    results[i]? = some result

/-- The streams that a call has opened since there were so many are one at most, which nobody else
has opened and whose end nobody else holds; a call that is exchanged uses this one. -/
structure OwnStream (n : Nat) (ds : List Deed) (w : World) (k : Nat) : Prop where
  once : (linksOf k ds).length ≤ 1
  new : ∀ link ∈ linksOf k ds, n ≤ link
  apart : ∀ j, ∀ link ∈ linksOf k ds, link ∈ linksOf j ds → j = k
  sole : ∀ link ∈ linksOf k ds, w.Sole k link
  used : ∀ (channel link : Nat) (x : Exchange),
    w.tasks[k]? = some (.call channel (.exchanging link x)) → linksOf k ds = [link]

/-- The calls of a fan, before anything has become of them. -/
def Fan.calls (f : Fan) (contexts : List Context) (dests : List PeerId) : List Call :=
  (contexts.zip dests).map fun (c, d) => f.call c d f.replyType.blank

section

variable {fan : Fan} {contexts : List Context} {dests : List PeerId}
  {replies : List fan.replyType.Carrier}

theorem Fan.getElem?_calls {i : Nat} {context : Context} {dest : PeerId}
    (hc : contexts[i]? = some context) (hd : dests[i]? = some dest) :
    (fan.calls contexts dests)[i]? = some (fan.call context dest fan.replyType.blank) :=
  getElem?_map_zip hc hd

theorem Fan.length_calls (h : contexts.length = dests.length) :
    (fan.calls contexts dests).length = dests.length := by
  rw [calls, List.length_map, List.length_zip, h, Nat.min_self]

/-! ## Starting the calls -/

theorem route_of_checkRoutes (h : checkRoutes client dests = .ok ()) {dest : PeerId}
    (hd : dest ∈ dests) : ∃ route, client.route dest = .ok route := by
  induction dests with
  | nil => cases hd
  | cons d dests ih =>
    rw [checkRoutes] at h
    split at h
    · cases h
    · rename_i route hroute
      rcases List.mem_cons.mp hd with rfl | hd
      · exact ⟨route, hroute⟩
      · exact ih h hd

theorem startAll_of_routes (w : World) {calls : List (Call × Nat)}
    (h : ∀ e ∈ calls, ∃ route, client.route e.1.dest = .ok route) :
    ∃ w', w.startAll client calls = .ok w' := by
  induction calls generalizing w with
  | nil => exact ⟨w, rfl⟩
  | cons e calls ih =>
    obtain ⟨route, hroute⟩ := h e (List.mem_cons_self ..)
    have hrest w := ih w fun e' he' => h e' (List.mem_cons_of_mem _ he')
    simp only [startAll, start, taskOf, hroute]
    cases route <;> exact hrest _

/-- A call on several peers that passes the checks begins all calls, on channels of their own. -/
theorem multiCall_eq_ok (w₀ : World) (hcontexts : contexts.length = dests.length)
    (hreplies : dests.length = replies.length) (hroutes : checkRoutes client dests = .ok ()) :
    ∃ w₁, w₀.multiCall client fan contexts dests replies =
        .ok ((List.range dests.length).map (w₀.channels.length + ·), w₁) ∧
      w₀.Begun client (fan.calls contexts dests) w₁ := by
  have hcount : dests.length = (fan.calls contexts dests).length :=
    (Fan.length_calls hcontexts).symm
  have hroute (e : Call × Nat) (he : e ∈ (fan.calls contexts dests).zip
      ((List.range dests.length).map (w₀.channels.length + ·))) :
      ∃ route, client.route e.1.dest = .ok route := by
    obtain ⟨⟨c, d⟩, hcd, he⟩ := List.mem_map.mp (List.of_mem_zip he).1
    rw [← he]
    exact route_of_checkRoutes hroutes (List.of_mem_zip hcd).2
  obtain ⟨w₁, hstart⟩ := startAll_of_routes { w₀ with
    channels := w₀.channels ++ List.replicate dests.length (Channel.ofCapacity 1 0) } hroute
  refine ⟨w₁, ?_, begun_of_startAll (hcount ▸ hstart)⟩
  rw [multiCall, if_neg (by simp [hcontexts, hreplies]), hroutes]
  simp only
  rw [show (contexts.zip dests).map _ = fan.calls contexts dests from rfl, hstart]

/-! ## What becomes of the calls -/

/-- What a call on several peers returns after a run. -/
theorem Begun.fansOut {receipts : List (Receipt Call)}
    (h : w₀.Begun client (fan.calls contexts dests) w₁) (hw : w₀.Tidy)
    (hreplies : dests.length = replies.length)
    (hfire : ∀ t, Move.fire t ∈ moves → t.isMade w₀.tokens = true)
    (hrun : run? moves w₁ = some w)
    (hpolls : pollChannels ((List.range dests.length).map (w₀.channels.length + ·)) w =
      some (receipts, w')) :
    w₀.FansOut client fan contexts dests replies (outside moves)
      ((replies.zip receipts).map fun (reply, receipt) =>
        concluded fan.replyType reply receipt) := by
  obtain ⟨hlength, hreceipts⟩ := getElem?_of_pollChannels (nodup_channels ..) hpolls
  rw [List.length_map, List.length_range] at hlength
  -- What comes of a call is what can come of it alone.
  have houtcome {i : Nat} {context : Context} {dest : PeerId} {reply : fan.replyType.Carrier}
      (hc : contexts[i]? = some context) (hd : dests[i]? = some dest)
      (hr : replies[i]? = some reply) : ∃ result,
        ((replies.zip receipts).map fun (reply, receipt) =>
          concluded fan.replyType reply receipt)[i]? = some result ∧
        w₀.ComesTo client (fan.call context dest fan.replyType.blank) reply (outside moves)
          result := by
    have hi : i < dests.length := (List.getElem?_eq_some_iff.mp hd).1
    have hreceipt := List.getElem?_eq_getElem (l := receipts) (hlength ▸ hi)
    obtain ⟨v, halone, -, hsame⟩ := h.alone hw (Fan.getElem?_calls hc hd) hfire hrun
    have hpoll := (pollChannel_congr hsame).trans (hreceipts i _ (getElem?_channels hi _))
    rw [hreceipt] at hpoll
    obtain ⟨⟨receipt, v'⟩, hpoll, heq⟩ := Option.map_eq_some_iff.mp hpoll
    cases heq
    exact ⟨_, getElem?_map_zip hr hreceipt, v, _, v', halone, hpoll, rfl⟩
  exact {
    length := by rw [List.length_map, List.length_zip, hlength, hreplies, Nat.min_self]
    pointwise := fun i context dest reply result hc hd hr hi => by
      obtain ⟨result', hi', hout⟩ := houtcome hc hd hr
      cases hi'.symm.trans hi
      exact hout
    determined := fun i context dest reply result hc hd hr hsame => by
      obtain ⟨result', hi, hout⟩ := houtcome hc hd hr
      rw [hi, hsame _ hout] }

/-- A call on several peers waits for ever only for one that can be waited for alone for ever. -/
theorem Begun.hangs (h : w₀.Begun client (fan.calls contexts dests) w₁) (hw : w₀.Tidy)
    (hcontexts : contexts.length = dests.length)
    (hfire : ∀ t, Move.fire t ∈ moves → t.isMade w₀.tokens = true)
    (hrun : run? moves w₁ = some w) (hrest : w.AtRest)
    (hpolls : pollChannels ((List.range dests.length).map (w₀.channels.length + ·)) w = none) :
    ∃ (i : Nat) (context : Context) (dest : PeerId), contexts[i]? = some context ∧
      dests[i]? = some dest ∧
      w₀.Hangs client (fan.call context dest fan.replyType.blank) (outside moves) := by
  obtain ⟨i, channel, hchannel, hpoll⟩ := exists_of_pollChannels_eq_none (nodup_channels ..) hpolls
  have hi : i < dests.length := by simpa using (List.getElem?_eq_some_iff.mp hchannel).1
  cases (getElem?_channels hi _).symm.trans hchannel
  have hc := List.getElem?_eq_getElem (hcontexts ▸ hi)
  have hd := List.getElem?_eq_getElem hi
  obtain ⟨v, halone, hrests, hsame⟩ := h.alone hw (Fan.getElem?_calls hc hd) hfire hrun
  have hpoll' := pollChannel_congr hsame
  rw [hpoll, Option.map_none] at hpoll'
  exact ⟨i, _, _, hc, hd, v, halone, hrests hrest, Option.map_eq_none_iff.mp hpoll'⟩

theorem Begun.ownStream {calls : List Call} {i : Nat} (h : w₀.Begun client calls w₁)
    (hw : w₀.InOrder) (hi : calls[i]? = some call) (hrun : run? moves w₁ = some w) :
    OwnStream w₀.links.length (ledger moves w₁) w (w₀.tasks.length + i) := by
  obtain ⟨c, hc, ht, -⟩ := h.begun i call hi
  have hopened := opened_of_run? ht (opened_of_taskOf hc) hrun
  have hunheld (link : Nat) : ¬ w₁.Holds (w₀.tasks.length + i) link .left := by
    rintro ⟨t, ht', he⟩
    cases ht.symm.trans ht'
    cases (end?_of_taskOf _ hc).symm.trans he
  have hstreams := streams_of_run? (h.inOrder hw) hunheld hrun
  rw [h.links] at hstreams
  exact {
    once := hopened.once
    new := fun link hl => hstreams.new link hl
    apart := fun j link hl hj => hstreams.apart j _ link (hstreams.new link hl) hj hl
    sole := fun link hl => hstreams.sole _ link (hstreams.new link hl) hl
    used := fun channel link x hx => hopened.task channel _ hx }

/-- Calls on several peers that pass the checks all begin. In whatever order tasks take steps then,
what is returned is of each call what can come of it alone, there is an end of waiting unless one of
the calls can be waited for alone for ever, and the streams of each call are its own. -/
theorem fans_out_of_run? (hw : w₀.Tidy) (hcontexts : contexts.length = dests.length)
    (hreplies : dests.length = replies.length) (hroutes : checkRoutes client dests = .ok ()) :
    ∃ channels w₁, w₀.multiCall client fan contexts dests replies = .ok (channels, w₁) ∧
      ∀ moves w, (∀ t, Move.fire t ∈ moves → t.isMade w₀.tokens = true) →
        run? moves w₁ = some w →
        (∀ receipts w', pollChannels channels w = some (receipts, w') →
          w₀.FansOut client fan contexts dests replies (outside moves)
            ((replies.zip receipts).map fun (reply, receipt) =>
              concluded fan.replyType reply receipt)) ∧
        (w.AtRest → pollChannels channels w = none →
          ∃ (i : Nat) (context : Context) (dest : PeerId), contexts[i]? = some context ∧
            dests[i]? = some dest ∧
            w₀.Hangs client (fan.call context dest fan.replyType.blank) (outside moves)) ∧
        ∀ i < dests.length,
          OwnStream w₀.links.length (ledger moves w₁) w (w₀.tasks.length + i) := by
  obtain ⟨w₁, hcall, hbegun⟩ := multiCall_eq_ok w₀ hcontexts hreplies hroutes
  refine ⟨_, w₁, hcall, fun moves w hfire hrun => ⟨?_, ?_, ?_⟩⟩
  · exact fun receipts w' hpolls => hbegun.fansOut hw hreplies hfire hrun hpolls
  · exact fun hrest hnone => hbegun.hangs hw hcontexts hfire hrun hrest hnone
  · intro i hi
    have hi' : i < (fan.calls contexts dests).length := (Fan.length_calls hcontexts).symm ▸ hi
    exact hbegun.ownStream hw.inOrder (List.getElem?_eq_getElem hi') hrun

/-- A question that is put to several. -/
def survey : Fan := ⟨Receiving.question.service, Receiving.question.args, .bool⟩

/-- Of four one answers, one is unknown, one is asked too late, and one is the asker, whose server
crashes. -/
theorem fans_out_to_four : ∃ w₁ w receipts w' results,
    (evening fun _ => .finish none (some [1])).multiCall (hermit fun _ => .crash) survey
        (List.replicate 4 Receiving.question.context) [⟨"bob"⟩, ⟨"carol"⟩, ⟨"bob"⟩, .here]
        (List.replicate 4 false) = .ok ([1, 2, 3, 4], w₁) ∧
      run? ([1, 2, 1, 0, 5, 5, 5, 5, 1, 1, 1, 2, 4].map .step ++
        .fire (.root 0) :: [3, 3, 4].map .step) w₁ = some w ∧
      pollChannels [1, 2, 3, 4] w = some (receipts, w') ∧
      (evening fun _ => .finish none (some [1])).FansOut (hermit fun _ => .crash) survey
        (List.replicate 4 Receiving.question.context) [⟨"bob"⟩, ⟨"carol"⟩, ⟨"bob"⟩, .here]
        (List.replicate 4 false) [.fire (.root 0)] results ∧
      results = [(none, ⟨.bool, true⟩),
        (some (.connection ⟨"carol"⟩ (.unknownPeer ⟨"carol"⟩)), ⟨.bool, false⟩),
        (some .cancelled, ⟨.bool, false⟩), (some .aborted, ⟨.bool, false⟩)] := by
  have hw : (evening fun _ => .finish none (some [1])).Tidy := tidy_evening fun _ _ _ _ _ => rfl
  obtain ⟨channels, w₁, hcall, h⟩ := @fans_out_of_run? _ (hermit fun _ => .crash) survey
    (List.replicate 4 Receiving.question.context) [⟨"bob"⟩, ⟨"carol"⟩, ⟨"bob"⟩, .here]
    (List.replicate 4 false) hw rfl rfl rfl
  cases hcall
  have hfire (t : Token) (ht : Move.fire t ∈ [1, 2, 1, 0, 5, 5, 5, 5, 1, 1, 1, 2, 4].map .step ++
      .fire (.root 0) :: [3, 3, 4].map .step) : t.isMade 1 = true := by
    have ht : t = .root 0 := by simpa using ht
    subst ht
    rfl
  exact ⟨_, _, _, _, _, rfl, rfl, rfl, (h _ _ hfire rfl).1 _ _ rfl, rfl⟩

end

end PeerCall.World
