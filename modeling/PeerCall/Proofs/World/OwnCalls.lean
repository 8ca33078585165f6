import PeerCall.Proofs.Serving
import PeerCall.Proofs.World.Calls

/-! # A call to oneself among other tasks

The task of a local call invokes the server, waits for it and hands the call back, and opens no
stream (`World.own_of_run?`). It never looks at the context of the call. What comes of the call is
what the server returned (`Call.Served`). -/

namespace PeerCall

/-- A note of an invocation of the local server for a call. -/
structure Call.Entered (call : Call) (codec : Codec) (peer : PeerId) (site : Site) (n : Note) :
    Prop where
  owner : n.owner = site.number
  context : n.invocation.context = call.context
  peer : n.invocation.peer = peer
  service : n.invocation.service = call.service
  args : call.encodeArgs codec = .ok n.invocation.args

/-- What a local call comes to, after these invocations. -/
inductive Call.Served (call : Call) (codec : Codec) (peer : PeerId) : Option Site → List Note →
    Call → Prop
  | unserved {site? e} (h : call.Unserved codec site? e) :
    Served call codec peer site? [] (call.fail e)
  | served {site n error reply} (hn : call.Entered codec peer site n)
    (hr : (site.server n.invocation).Returns error reply) :
    Served call codec peer (some site) [n] (World.settleLocal call codec error reply)

namespace World

variable {w w' : World} {moves : List Move} {k i channel : Nat} {call : Call} {codec : Codec}
  {peer : PeerId} {site? : Option Site} {ds : List Deed}

/-- How the task of a local call may stand, after these deeds. -/
inductive Own (w : World) (k channel : Nat) (call : Call) (codec : Codec) (peer : PeerId)
    (site? : Option Site) (ds : List Deed) : Prop
  | entering (ht : w.tasks[k]? = some (.call channel (.entering call codec peer site?)))
    (hi : invokedBy k ds = []) (hn : callsOf k ds = [])
  | serving {site n v} (hs : site? = some site)
    (ht : w.tasks[k]? = some (.call channel (.serving call codec v)))
    (hi : invokedBy k ds = [n]) (he : call.Entered codec peer site n)
    (hr : ∀ error reply, v.work.Returns error reply →
      (site.server n.invocation).Returns error reply)
    (hn : callsOf k ds = [])
  | crashed (ht : w.tasks[k]? = some .ended) (hi : invokedBy k ds ≠ []) (hn : callsOf k ds = [])
  | done {c} (h : w.Handing k channel c ds) (hc : call.Served codec peer site? (invokedBy k ds) c)

theorem Own.later (h : w.Own k channel call codec peer site? ds) (m : Moment) :
    Own { w with moment := m } k channel call codec peer site? ds := by
  cases h with
  | entering ht hi hn => exact .entering ht hi hn
  | serving hs ht hi he hr hn => exact .serving hs ht hi he hr hn
  | crashed ht hi hn => exact .crashed ht hi hn
  | done h hc => exact .done (h.later m) hc

/-- What others do leaves a local call as it stands. -/
theorem Own.spared (h : w.Own k channel call codec peer site? ds) (hs : w.step? i = some w')
    (hi : i ≠ k) : w'.Own k channel call codec peer site? (ds ++ w.deeds w' i) ∧
      linksOf k (w.deeds w' i) = [] := by
  have hsteps := steps_of_step? hs
  have hown : invokedBy k (w.deeds w' i) = [] := by
    rw [invokedBy_deeds, if_neg fun h => hi h.1]
  cases h with
  | entering ht hi' hn =>
    obtain ⟨ht', hlinks, hcalls⟩ := hsteps.spares hi ht
    exact ⟨.entering ht' (by simp [hi', hown]) (by simp [hn, hcalls]), hlinks⟩
  | serving hsite ht hi' he hr hn =>
    obtain ⟨ht', hlinks, hcalls⟩ := hsteps.spares hi ht
    exact ⟨.serving hsite ht' (by simp [hi', hown]) he hr (by simp [hn, hcalls]), hlinks⟩
  | crashed ht hi' hn =>
    obtain ⟨ht', hlinks, hcalls⟩ := hsteps.spares hi ht
    exact ⟨.crashed ht' (by simp [hi', hown]) (by simp [hn, hcalls]), hlinks⟩
  | done h hc =>
    obtain ⟨h', hlinks⟩ := h.step hs
    exact ⟨.done h' (by simpa [hown] using hc), hlinks⟩

/-- A local call that has not entered the server enters it, or ends without. -/
theorem Own.enter (ht : w.tasks[k]? = some (.call channel (.entering call codec peer site?)))
    (hi : invokedBy k ds = []) (hn : callsOf k ds = []) (hs : w.Steps k w') :
    w'.Own k channel call codec peer site? (ds ++ w.deeds w' k) ∧
      linksOf k (w.deeds w' k) = [] := by
  have hk : k < w.tasks.length := (List.getElem?_eq_some_iff.mp ht).1
  have hcalls := callsOf_of_open ht (fun _ h => by cases h)
  have hown : invokedBy k (w.deeds w' k) = w'.notes.drop w.notes.length := by
    rw [invokedBy_deeds, answers?, ht, if_pos ⟨rfl, rfl⟩]
  cases hs with
  | unentered ht' hu =>
    cases ht.symm.trans ht'
    refine ⟨.done (.waiting (List.getElem?_set_self hk) (by simp [hn, hcalls])) ?_,
      linksOf_of_unopened (List.getElem?_set_self hk) rfl⟩
    have hnone : invokedBy k (ds ++ w.deeds _ k) = [] :=
      (invokedBy_append ..).trans (by rw [hi, hown]; exact List.drop_length)
    rw [hnone]
    exact .unserved hu
  | @entered _ _ _ _ args site inv ht' ha hinv =>
    cases ht.symm.trans ht'
    have hone : invokedBy k (ds ++ w.deeds _ k) =
        [⟨site.number, inv, inv.context.verdict w.moment⟩] :=
      (invokedBy_append ..).trans (by rw [hi, hown]; exact List.drop_left)
    refine ⟨.serving rfl (List.getElem?_set_self hk) hone ?_ ?_ (by simp [hn, hcalls]),
      linksOf_of_unopened (List.getElem?_set_self hk) rfl⟩
    · subst hinv
      exact ⟨rfl, rfl, rfl, rfl, ha⟩
    · exact fun _ _ hr => hr
  | stopped ht' ho | refused ht' ho =>
    cases ht.symm.trans ht'
    cases ho
  | _ => cases ht.symm.trans ‹w.tasks[k]? = some _›

/-- A local call waits for the server, and comes to what the server returns. -/
theorem Own.serve {site : Site} {n : Note} {v : Serving}
    (ht : w.tasks[k]? = some (.call channel (.serving call codec v)))
    (hi : invokedBy k ds = [n]) (he : call.Entered codec peer site n)
    (hr : ∀ error reply, v.work.Returns error reply →
      (site.server n.invocation).Returns error reply)
    (hn : callsOf k ds = []) (hs : w.Steps k w') :
    w'.Own k channel call codec peer (some site) (ds ++ w.deeds w' k) ∧
      linksOf k (w.deeds w' k) = [] := by
  have hk : k < w.tasks.length := (List.getElem?_eq_some_iff.mp ht).1
  have hcalls := callsOf_of_open ht (fun _ h => by cases h)
  have hown : invokedBy k (ds ++ w.deeds w' k) = [n] := by
    rw [invokedBy_append, hi, hs.invokedBy ht rfl]
    rfl
  cases hs with
  | serving ht' hv =>
    cases ht.symm.trans ht'
    refine ⟨.serving rfl (List.getElem?_set_self hk) hown he ?_ (by simp [hn, hcalls]),
      linksOf_of_unopened (List.getElem?_set_self hk) rfl⟩
    intro error reply h
    exact hr error reply (Serving.returns_of_more hv h)
  | crashed ht' =>
    cases ht.symm.trans ht'
    refine ⟨.crashed (List.getElem?_set_self hk) ?_ (by simp [hn, hcalls]),
      linksOf_of_unopened (List.getElem?_set_self hk) rfl⟩
    rw [hown]
    exact List.cons_ne_nil _ _
  | returned ht' hv =>
    cases ht.symm.trans ht'
    refine ⟨.done (.waiting (List.getElem?_set_self hk) (by simp [hn, hcalls])) ?_,
      linksOf_of_unopened (List.getElem?_set_self hk) rfl⟩
    rw [hown]
    exact .served he (hr _ _ (Serving.returns_of_step? hv))
  | stopped ht' ho | refused ht' ho =>
    cases ht.symm.trans ht'
    cases ho
  | _ => cases ht.symm.trans ‹w.tasks[k]? = some _›

theorem Own.step (h : w.Own k channel call codec peer site? ds) (hs : w.step? i = some w') :
    w'.Own k channel call codec peer site? (ds ++ w.deeds w' i) ∧
      linksOf k (w.deeds w' i) = [] := by
  by_cases hi : i = k
  case neg => exact h.spared hs hi
  subst hi
  cases h with
  | entering ht hi hn => exact Own.enter ht hi hn (steps_of_step? hs)
  | serving hsite ht hi he hr hn =>
    subst hsite
    exact Own.serve ht hi he hr hn (steps_of_step? hs)
  | crashed ht =>
    rw [step?, ht] at hs
    cases hs
  | done h hc =>
    obtain ⟨t, ht, hne⟩ := h.task
    have hown := (steps_of_step? hs).invokedBy ht hne
    obtain ⟨h', hlinks⟩ := h.step hs
    exact ⟨.done h' (by simpa [hown] using hc), hlinks⟩

/-- Whatever else is done in a run, a local call stands as its own steps have left it, and opens no
link. -/
theorem own_of_run? {client : Client} {w₀ w₁ : World} (hself : client.isSelf call.dest = true)
    (hstart : w₀.start client call channel = .ok w₁) (hrun : run? moves w₁ = some w) :
    w.Own w₀.tasks.length channel call client.codec client.id client.server (ledger moves w₁) ∧
      linksOf w₀.tasks.length (ledger moves w₁) = [] := by
  let P (ds : List Deed) (w : World) : Prop :=
    w.Own w₀.tasks.length channel call client.codec client.id client.server ds ∧
      linksOf w₀.tasks.length ds = []
  have hP : P (ledger moves w₁) w := by
    refine ledger_induct (P := P) ?_ ?_ ?_ hrun
    · intro ds w i w' _ hP hs
      obtain ⟨h', hlinks⟩ := hP.1.step hs
      exact ⟨h', by simp [hP.2, hlinks]⟩
    · intro ds w m hP _
      exact ⟨hP.1.later m, hP.2⟩
    · rw [start, taskOf, Client.route, if_pos hself] at hstart
      cases hstart
      exact ⟨.entering (List.getElem?_concat_length ..) rfl rfl, rfl⟩
  exact hP

end World

end PeerCall
