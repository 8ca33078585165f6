import PeerCall.Proofs.Channel
import PeerCall.Proofs.World.Calls

/-! # Giving a remote call up

A remote call among any other tasks, to a peer that does what it likes, whose context is done before
the call is. Until the call takes its next step it touches nothing. With that step it ends with the
context's error and gives its stream up as failed, or closes the connection on which it has none
yet, and after it only the handing back is left. Main statement: `World.cancelled_of_run?`. -/

namespace PeerCall

/-! ## The link -/

namespace Link

variable {l l' : Link}

/-- The left end was given up as failed. -/
structure Severed (l : Link) : Prop where
  wasReset : l.wasReset.get .left = true
  shut : ∀ s, l.shut s = true

/-- Who reads at the right end finds the bytes that are left, and after these the reset. -/
def TellsReset (l : Link) : Prop :=
  ∀ n, 0 < n → ∃ l', l.read? .right n =
    some (if l.flow .left = [] then .error .reset else .ok ((l.flow .left).take n), l')

theorem severed_abort (l : Link) : (l.abort .left).Severed :=
  ⟨by simp, fun s => shut_abort ..⟩

theorem Severed.acted (h : l.Severed) (ha : l.Acted .right l') : l'.Severed where
  wasReset := ha.spares.trans h.wasReset
  shut s := ha.shut s (h.shut s)

theorem Severed.tellsReset (h : l.Severed) : l.TellsReset := by
  intro n hn
  obtain ⟨l', hr⟩ := read?_of_shut (s := .right) (h.shut .left) hn
  have hreset : l.wasReset.get Side.right.other = true := h.wasReset
  simp only [hreset, and_true] at hr
  exact ⟨l', hr⟩

end Link

/-! ## The call -/

/-- A context that is done is cancelled, or its deadline is over. -/
theorem Context.verdict_eq {c : Context} (h : c.verdict m ≠ none) :
    c.verdict m = some (if m.isCancelled c.token then .cancelled else .deadlineExceeded) := by
  unfold verdict at h ⊢
  split
  · rfl
  · rw [if_neg ‹_›] at h
    split at h
    · split at h
      · exact if_pos ‹_›
      · exact absurd rfl h
    · exact absurd rfl h

/-- A call was ended by its context, at this moment, and without a reply. -/
structure Call.CutShort (call : Call) (m : Moment) (c : Call) : Prop where
  error : c.error =
    some (if m.isCancelled call.context.token then .cancelled else .deadlineExceeded)
  replied : c.replied = false
  replySlot : c.replySlot = call.replySlot

theorem Call.Underway.cutShort {call c : Call} (h : call.Underway c) (hr : call.replied = false)
    (hv : call.context.verdict m = some e) : call.CutShort m (c.fail e) := by
  have he := Context.verdict_eq (hv ▸ Option.some_ne_none e)
  rw [hv] at he
  rcases h with rfl | ⟨_, rfl⟩ <;> exact ⟨he, hr, rfl⟩

namespace World

variable {w w' : World} {moves : List Move} {k i channel link : Nat} {call c : Call} {l : Link}
  {host : Host} {ds : List Deed}

/-- The task at a place is one of a call that is not done. -/
def InProgress (w : World) (k : Nat) : Prop :=
  ∃ channel c, w.tasks[k]? = some (.call channel c) ∧ ∀ call, c ≠ .delivering call

theorem Handing.not_inProgress (h : w.Handing k channel c ds) : ¬ w.InProgress k := by
  rintro ⟨_, c, ht, hc⟩
  cases h with
  | waiting ht' =>
    cases ht.symm.trans ht'
    exact hc _ rfl
  | handed ht' => cases ht.symm.trans ht'

/-- If the task at a place waits to hand a call back, it stands in line for a slot. -/
def WaitsForRoom (w : World) (k channel : Nat) : Prop :=
  w.step? k = none → w.tasks[k]? = some .ended ∨
    ∃ ch, w.channels[channel]? = some ch ∧ ch.receiving = true ∧ k ∈ ch.waiting ∧ k ∉ ch.granted

theorem length_channels_of_run? (h : run? moves w = some w') :
    w'.channels.length = w.channels.length :=
  ledger_induct (P := fun _ w' => w'.channels.length = w.channels.length)
    (fun _ _ _ _ _ hP hs => (steps_of_step? hs).length_channels.trans hP)
    (fun _ _ _ hP _ => hP) rfl h

theorem Handing.waitsForRoom (h : w.Handing k channel c ds) (hc : channel < w.channels.length) :
    w.WaitsForRoom k channel := by
  intro hn
  cases h with
  | handed ht => exact .inl ht
  | waiting ht =>
    have hch : w.channels[channel]? = some w.channels[channel] := List.getElem?_eq_getElem hc
    rw [step?_handing ht hch, Option.map_eq_none_iff] at hn
    exact .inr ⟨_, hch, Channel.send?_eq_none hn⟩

/-- A call that is done is handed back as soon as there is room, and that is all. -/
private theorem settled_of_run? (h : w.Handing k channel c ds) (hc : channel < w.channels.length)
    (hrun : run? moves w = some w') : w'.Handing k channel c (ds ++ ledger moves w) ∧
      linksOf k (ledger moves w) = [] ∧ w'.WaitsForRoom k channel := by
  obtain ⟨h', hlinks⟩ := h.of_run? hrun
  exact ⟨h', hlinks, h'.waitsForRoom (length_channels_of_run? hrun ▸ hc)⟩

/-! ## Giving up -/

/-- With this step a call is given up. Its stream, if it has one, is given up as failed. -/
structure Cut (w w' : World) (k channel : Nat) (call c : Call) (ds : List Deed) : Prop where
  cutShort : call.CutShort w.moment c
  handing : w'.Handing k channel c (ds ++ w.deeds w' k)
  unopened : linksOf k (w.deeds w' k) = []
  channels : w'.channels = w.channels
  severed : ∀ link ∈ linksOf k ds, (∀ i, ¬ w'.Holds i link .left) ∧
    ∃ l, w.links[link]? = some l ∧ w'.links[link]? = some (l.abort .left)

/-- A call that has no link yet ends without one. -/
private theorem Cut.of_opening {t : CallTask} (ht : w.tasks[k]? = some (.call channel t))
    (hopening : t.opening? = some call) (ho : linksOf k ds = []) (hn : callsOf k ds = [])
    (hfresh : call.replied = false) (he : call.context.verdict w.moment = some e) :
    ∃ w' c, w.step? k = some w' ∧ w.Cut w' k channel call c ds := by
  have hk : k < w.tasks.length := (List.getElem?_eq_some_iff.mp ht).1
  have hdone (c : Call) : t ≠ .delivering c := by
    rintro rfl
    cases hopening
  refine ⟨_, _, step?_of_verdict ht hopening he, Call.Underway.cutShort (.inl rfl) hfresh he,
    .waiting (List.getElem?_set_self hk) ?_, linksOf_of_unopened (List.getElem?_set_self hk) rfl,
    rfl, by simp [ho]⟩
  rw [callsOf_append, hn, callsOf_of_open ht hdone]
  rfl

/-- A call whose context is done is given up with its next step, whatever it was waiting for. -/
theorem Remote.cut (h : w.Remote k channel call host ds) (hopen : w.InProgress k)
    (hfresh : call.replied = false) (hv : call.context.verdict w.moment ≠ none) :
    ∃ w' c, w.step? k = some w' ∧ w.Cut w' k channel call c ds := by
  obtain ⟨e, he⟩ := Option.ne_none_iff_exists'.mp hv
  cases h with
  | done h => exact absurd hopen h.not_inProgress
  | dialing ht ho hn => exact Cut.of_opening ht rfl ho hn hfresh he
  | connecting ht _ hc ho hn => exact Cut.of_opening ht (congrArg some hc) ho hn hfresh he
  | @greeting link g ht _ hl _ hc ho hn =>
    have hk : k < w.tasks.length := (List.getElem?_eq_some_iff.mp ht).1
    have hstep : w.step? k = some ((w.setLink link (w.links[link].drop .left)).setTask k
        (.call channel (.delivering (g.call.fail e)))) := by
      rw [step?_greeting ht (List.getElem?_eq_getElem hl), Greeting.step?, hc, he, ← hc]
      rfl
    refine ⟨_, _, hstep, Call.Underway.cutShort (.inl hc) hfresh he,
      .waiting (List.getElem?_set_self hk) ?_, linksOf_of_unopened (List.getElem?_set_self hk) rfl,
      rfl, by simp [ho]⟩
    rw [callsOf_append, hn, callsOf_of_open ht fun _ h => by cases h]
    rfl
  | @exchanging link x ht hl hs hx hc ho hn =>
    have hk : k < w.tasks.length := (List.getElem?_eq_some_iff.mp ht).1
    have hthere : w.links[link]? = some w.links[link] := List.getElem?_eq_getElem hl
    have hstep : w.step? k = some ((w.setLink link (w.links[link].abort .left)).setTask k
        (.call channel (.delivering (x.call.fail e)))) := by
      rw [step?_exchanging ht hthere, Exchange.step?, hc.context, he]
      rfl
    refine ⟨_, _, hstep, hc.cutShort hfresh he, .waiting (List.getElem?_set_self hk) ?_,
      linksOf_of_exchanging ht, rfl, ?_⟩
    · rw [callsOf_append, hn, callsOf_of_open ht fun _ h => by cases h]
      rfl
    · rw [ho]
      rintro _ (_ | ⟨_, ⟨⟩⟩)
      refine ⟨fun i hi => ?_, _, hthere, List.getElem?_set_self hl⟩
      rcases holds_setTask hi with ⟨hne, hh⟩ | ⟨-, he⟩
      · exact hne (hs i hh)
      · cases he

/-- As long as a call is not done, it alone holds the near end of its stream. -/
theorem Remote.sole (h : w.Remote k channel call host ds) (hopen : w.InProgress k)
    (hlink : link ∈ linksOf k ds) : link < w.links.length ∧ w.Sole k link := by
  cases h with
  | done h => exact absurd hopen h.not_inProgress
  | dialing _ ho | connecting _ _ _ ho | greeting _ _ _ _ _ ho =>
    rw [ho] at hlink
    cases hlink
  | exchanging _ hl hs _ _ ho =>
    rw [ho] at hlink
    cases List.mem_singleton.mp hlink
    exact ⟨hl, hs⟩

/-- From the moment on at which the context of a remote call is done, until the call takes its next
step, its stream is only acted on from the other end. In that step, whatever the call was waiting
for, it gives the stream up as failed, and ends with the error of its context and without a reply.
After it the call is only handed back, as soon as there is room, and the stream is again only acted
on from the other end: who reads there finds what was sent before, and then the reset. No stream is
opened any more. -/
theorem cancelled_of_run? {client : Client} {w₀ w₁ w₂ : World} {before : List Move}
    (hw : w₀.InOrder) (hchannel : channel < w₀.channels.length) (hfresh : call.replied = false)
    (hroute : client.route call.dest = .ok (.toPeer host))
    (hstart : w₀.start client call channel = .ok w₁) (hk : w₀.tasks.length = k)
    (hrun : run? moves w₁ = some w) (hopen : w.InProgress k)
    (hv : call.context.verdict w.moment ≠ none) (hidle : Move.step k ∉ before)
    (hrun' : run? before w = some w₂) :
    ∃ w₃ c, w₂.step? k = some w₃ ∧ call.CutShort w₂.moment c ∧
      (∀ link ∈ linksOf k (ledger moves w₁), ∃ l l₂, w.links[link]? = some l ∧
        w₂.links[link]? = some l₂ ∧ l.Acted .right l₂ ∧ w₃.links[link]? = some (l₂.abort .left)) ∧
      ∀ after w₄, run? after w₃ = some w₄ →
        w₄.Handing k channel c (ledger (moves ++ (before ++ .step k :: after)) w₁) ∧
        w₄.WaitsForRoom k channel ∧
        linksOf k (ledger (moves ++ (before ++ .step k :: after)) w₁) =
          linksOf k (ledger moves w₁) ∧
        ∀ link ∈ linksOf k (ledger moves w₁), ∃ l₂ l₄, w₂.links[link]? = some l₂ ∧
          w₄.links[link]? = some l₄ ∧ (l₂.abort .left).Acted .right l₄ ∧ l₄.TellsReset := by
  subst hk
  obtain ⟨-, hremote, -⟩ := remote_of_run? hw hroute hstart hrun
  obtain ⟨-, hremote₂, -⟩ := remote_of_run? hw hroute hstart ((run?_append hrun).trans hrun')
  have hopen₂ : w₂.InProgress w₀.tasks.length := by
    obtain ⟨channel', c, ht, hc⟩ := hopen
    exact ⟨channel', c, (spares_of_run? ht hidle hrun').1, hc⟩
  have hlinks₂ : linksOf w₀.tasks.length (ledger before w) = [] := by
    obtain ⟨channel', c, ht, -⟩ := hopen
    exact (spares_of_run? ht hidle hrun').2.1
  have hv₂ : call.context.verdict w₂.moment ≠ none := by
    intro hn
    exact hv (Context.verdict_of_before (before_of_run? hrun') hn)
  obtain ⟨w₃, c, hstep, hcut⟩ := hremote₂.cut hopen₂ hfresh hv₂
  have hledger (after : List Move) :
      ledger (moves ++ (before ++ .step w₀.tasks.length :: after)) w₁ =
        ledger (moves ++ before) w₁ ++ w₂.deeds w₃ w₀.tasks.length ++ ledger after w₃ := by
    rw [← List.append_assoc, ledger_append ((run?_append hrun).trans hrun'), ledger, move?, hstep]
    simp only [movesDeeds, List.append_assoc]
  have hsevered (link : Nat) (hlink : link ∈ linksOf w₀.tasks.length (ledger moves w₁)) :=
    hcut.severed link (ledger_append hrun ▸ linksOf_append .. ▸ List.mem_append_left _ hlink)
  have hchannel₃ : channel < w₃.channels.length := by
    rw [hcut.channels, length_channels_of_run? hrun', length_channels_of_run? hrun,
      tasks_of_start hroute hstart]
    simpa [spawn, modifyChannel] using hchannel
  refine ⟨w₃, c, hstep, hcut.cutShort, ?_, ?_⟩
  · intro link hlink
    obtain ⟨hl, hs⟩ := hremote.sole hopen hlink
    have hidle' (i : Nat) (hi : w.Holds i link .left) : Move.step i ∉ before := hs i hi ▸ hidle
    obtain ⟨-, l₂, hl₂, hacted⟩ := acted_of_run? (List.getElem?_eq_getElem hl) hidle' hrun'
    obtain ⟨-, l₂', hl₂', hl₃⟩ := hsevered link hlink
    cases hl₂.symm.trans hl₂'
    exact ⟨_, l₂, List.getElem?_eq_getElem hl, hl₂, hacted, hl₃⟩
  · intro after w₄ hafter
    obtain ⟨hhand, hnew, hwait⟩ := settled_of_run? hcut.handing hchannel₃ hafter
    rw [hledger]
    refine ⟨hhand, hwait, ?_, ?_⟩
    · simp [ledger_append hrun, hlinks₂, hcut.unopened, hnew]
    · intro link hlink
      obtain ⟨hloose, l₂, hl₂, hl₃⟩ := hsevered link hlink
      obtain ⟨-, l₄, hl₄, hacted⟩ :=
        acted_of_run? hl₃ (fun i hi => absurd hi (hloose i)) hafter
      exact ⟨l₂, l₄, hl₂, hl₄, hacted, ((Link.severed_abort l₂).acted hacted).tellsReset⟩

/-- A call that is given up when it has sent its request. -/
theorem cancelled_after_sending : ∃ w₁ w w₂ c,
    (evening fun _ => .never).start alice Receiving.question 0 = .ok w₁ ∧
      run? [.step 1, .step 1, .fire (.root 0)] w₁ = some w ∧ w.step? 1 = some w₂ ∧
      w₂.Handing 1 0 c (ledger [.step 1, .step 1, .fire (.root 0), .step 1] w₁) ∧
      c.error = some .cancelled ∧ c.replied = false := by
  obtain ⟨w₁, w, hstart, hrun, hopen, hv⟩ : ∃ w₁ w,
      (evening fun _ => .never).start alice Receiving.question 0 = .ok w₁ ∧
        run? [.step 1, .step 1, .fire (.root 0)] w₁ = some w ∧ w.InProgress 1 ∧
        w.moment.isCancelled Receiving.question.context.token = true :=
    ⟨_, _, rfl, rfl, ⟨0, _, rfl, fun _ h => by cases h⟩, rfl⟩
  have hdone : Receiving.question.context.verdict w.moment ≠ none := by
    rw [Context.verdict, if_pos hv]
    exact Option.some_ne_none _
  have hidle : Move.step 1 ∉ ([] : List Move) := List.not_mem_nil
  obtain ⟨w₂, c, hstep, hcut, -, hafter⟩ := cancelled_of_run? (inOrder_evening _)
    Nat.zero_lt_one rfl rfl hstart rfl hrun hopen hdone hidle rfl
  refine ⟨w₁, w, w₂, c, hstart, hrun, hstep, (hafter [] w₂ rfl).1, ?_, hcut.replied⟩
  rw [hcut.error, if_pos hv]

end World

end PeerCall
